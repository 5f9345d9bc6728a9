import ClauseTree.Proofs.Fragment.Members

/-!
# Places in a chain

A list of conditions should be written as a chain of texts that are not empty: a word that
introduces the first, a connector between each two, and parentheses around the members of a
group. `kept` holds the conditions that have text, each with its own, and `introduced` writes
them so. A condition without text contributes nothing.

What a test is written as can be empty, though, and a chain does not look there: it gives every
test a place, with its connector or with the word that introduces the chain. Only within a group
of a join does a test that has no text lose its place, and only as long as no text stands before
it. `gaplessAll` says that no test without text has a place. `Tracks` relates the members of a
list to the chain that there should be: without a gap the two have the same places, and with one
the members have more of them or longer texts. It is shown along the recursion of the members, for
both kinds of chains at once.
-/

namespace ClauseTree

namespace Condition

/-- Conditions, each with a text. -/
abbrev Texts (α : Type) := List (Condition α × List Char)

variable {α : Type}

/-- The texts, each after the connector of its condition. -/
def connected (xs : Texts α) : List Char :=
  xs.flatMap fun x => ' ' :: (x.1.connector.word.toList ++ ' ' :: x.2)

theorem length_connected_cons (x : Condition α × List Char) (xs : Texts α) :
    (connected (x :: xs)).length =
      x.1.connector.word.toList.length + 2 + x.2.length + (connected xs).length := by
  simp only [connected, List.flatMap_cons, List.length_append, List.length_cons]
  omega

theorem two_le_length_word (k : Connector) : 2 ≤ k.word.toList.length := by
  cases k <;> decide

/-- The texts with a connector between each two. Before the first of them stands what `opening`
writes for its condition. -/
def introduced (opening : Condition α → List Char) : Texts α → List Char
  | [] => []
  | x :: xs => opening x.1 ++ x.2 ++ connected xs

/-- What stands before the chain of a group. -/
def bracket (negated : Bool) : List Char := if negated then "not (".toList else ['(']

/-- The chain of a group in parentheses, if there is one. -/
def bracketed (negated : Bool) (xs : Texts α) : List Char :=
  if xs.isEmpty then [] else bracket negated ++ introduced (fun _ => []) xs ++ [')']

mutual

/-- The tests of a condition, each with its negation. -/
def signed : Condition α → List (Bool × α)
  | .test t n _ => [(n, t)]
  | .group cs _ _ => signedOf cs

/-- The tests of a list of conditions, each with its negation. -/
def signedOf : List (Condition α) → List (Bool × α)
  | [] => []
  | c :: cs => signed c ++ signedOf cs

end

section Kept

variable (text : Bool → α → List Char)

mutual

/-- The text of a condition, given those of the tests. -/
def textOf : Condition α → List Char
  | .test t n _ => text n t
  | .group cs n _ => bracketed n (kept cs)

/-- The conditions that have text, each with it. -/
def kept : List (Condition α) → Texts α
  | [] => []
  | c :: cs => if (textOf c).isEmpty then kept cs else (c, textOf c) :: kept cs

end

theorem textOf_test (t : α) (n : Bool) (k : Connector) :
    textOf text (.test t n k) = text n t := by
  rw [textOf]

theorem textOf_group (cs : List (Condition α)) (n : Bool) (k : Connector) :
    textOf text (.group cs n k) = bracketed n (kept text cs) := by
  rw [textOf]

theorem kept_cons_of_eq_nil {c : Condition α} (hc : textOf text c = [])
    (cs : List (Condition α)) : kept text (c :: cs) = kept text cs := by
  rw [kept, if_pos (List.isEmpty_iff.2 hc)]

theorem kept_cons_of_ne_nil {c : Condition α} (hc : textOf text c ≠ [])
    (cs : List (Condition α)) : kept text (c :: cs) = (c, textOf text c) :: kept text cs := by
  rw [kept, if_neg (mt List.isEmpty_iff.1 hc)]

theorem kept_cons_eq_nil_iff (c : Condition α) (cs : List (Condition α)) :
    kept text (c :: cs) = [] ↔ textOf text c = [] ∧ kept text cs = [] := by
  by_cases hc : textOf text c = []
  · rw [kept_cons_of_eq_nil text hc, and_iff_right hc]
  · rw [kept_cons_of_ne_nil text hc]
    simp [hc]

end Kept

section Gapless

variable (blank : Bool → α → Bool)

/-- No test of the condition has text. -/
def isHollow (c : Condition α) : Bool := (signed c).all fun x => blank x.1 x.2

mutual

/-- No place is given to a test without text. Such a test takes one if `started` holds, and in
the groups `inner` says whether it takes one before any text. -/
def gapless (inner started : Bool) : Condition α → Bool
  | .test t n _ => !(started && blank n t)
  | .group cs _ _ => gaplessAll inner inner cs

/-- No place in the chain is given to a test without text. -/
def gaplessAll (inner started : Bool) : List (Condition α) → Bool
  | [] => true
  | c :: cs => gapless inner started c && gaplessAll inner (started || !isHollow blank c) cs

end

/-- Where every test takes a place, all of them must have text. -/
theorem gaplessAll_true_iff (cs : List (Condition α)) :
    gaplessAll blank true true cs = true ↔ ∀ x ∈ signedOf cs, blank x.1 x.2 = false := by
  induction cs using forest_induction with
  | nil => simp [gaplessAll, signedOf]
  | test t n k cs ih => simp [gaplessAll, gapless, signedOf, signed, ih]
  | group gs n k cs ihg ih =>
    simp only [gaplessAll, gapless, Bool.true_or, Bool.and_eq_true, ihg, ih, signedOf, signed,
      List.forall_mem_append]

end Gapless

/-! ## Chains that are longer than they should be -/

/-- The two chains are the same, or, without `exact`, the second one has more places or longer
texts. -/
inductive Shorter : Bool → Texts α → Texts α → Prop
  | nil : Shorter true [] []
  | keep {exact : Bool} {xs ys : Texts α} (x : Condition α × List Char) (h : Shorter exact xs ys) :
      Shorter exact (x :: xs) (x :: ys)
  | lose {exact : Bool} {xs ys : Texts α} (y : Condition α × List Char) (h : Shorter exact xs ys) :
      Shorter false xs (y :: ys)
  | shrink {exact : Bool} {xs ys : Texts α} {s t : List Char} (c : Condition α)
      (hlength : s.length < t.length) (h : Shorter exact xs ys) :
      Shorter false ((c, s) :: xs) ((c, t) :: ys)

namespace Shorter

variable {exact : Bool} {xs ys : Texts α}

theorem eq_of_exact (h : Shorter exact xs ys) (hexact : exact = true) : xs = ys := by
  induction h with
  | nil => rfl
  | keep x _ ih => rw [ih hexact]
  | lose y _ _ => simp at hexact
  | shrink c _ _ _ => simp at hexact

theorem eq_nil (h : Shorter exact xs []) : xs = [] ∧ exact = true := by
  cases h
  exact ⟨rfl, rfl⟩

theorem length_connected_le (h : Shorter exact xs ys) :
    (connected xs).length ≤ (connected ys).length ∧
      (exact = false → (connected xs).length < (connected ys).length) := by
  induction h with
  | nil => simp
  | keep x _ ih =>
    rw [length_connected_cons, length_connected_cons]
    exact ⟨by omega, fun hexact => by have := ih.2 hexact; omega⟩
  | lose y _ ih =>
    rw [length_connected_cons]
    exact ⟨by omega, fun _ => by omega⟩
  | shrink c hlength _ ih =>
    rw [length_connected_cons, length_connected_cons]
    exact ⟨by dsimp only; omega, fun _ => by dsimp only; omega⟩

/-- A place more, or a longer text, makes the chain longer. The word that introduces it may
change with the first place, so none may be much longer than another. -/
theorem length_introduced_lt {opening : Condition α → List Char}
    (hopening : ∀ c, opening c ≠ [])
    (hlength : ∀ c c', (opening c).length < (opening c').length + 4)
    (h : Shorter exact xs ys) (hexact : exact = false) :
    (introduced opening xs).length < (introduced opening ys).length := by
  cases h with
  | nil => simp at hexact
  | keep x h =>
    have := h.length_connected_le.2 hexact
    simp only [introduced, List.length_append]
    omega
  | lose y h =>
    have hle := h.length_connected_le.1
    have hpos := List.length_pos_iff.2 (hopening y.1)
    -- The first chain is introduced by another condition, and its connector has no place there.
    cases xs with
    | nil =>
      simp only [introduced, List.length_append, List.length_nil]
      omega
    | cons x xs =>
      have hopen := hlength x.1 y.1
      have hword := two_le_length_word x.1.connector
      rw [length_connected_cons] at hle
      simp only [introduced, List.length_append]
      omega
  | shrink c hlt h =>
    have := h.length_connected_le.1
    simp only [introduced, List.length_append]
    omega

end Shorter

end Condition

open Condition

/-! ## The chains of a list of members -/

namespace Member

variable {α : Type} {w : Writer}

/-- The places of a chain, each with its text. -/
def places (w : Writer) (ms : List (Member α)) : Texts α :=
  (ms.filter counts).map fun m => (m.condition, Fragment.chars w m.fragment)

/-- The places from the first one on that has text, or all of them. -/
def shown (started : Bool) (xs : Texts α) : Texts α :=
  if started then xs else xs.dropWhile fun x => x.2.isEmpty

/-- A member that takes no place has no text. -/
def Silent (w : Writer) (ms : List (Member α)) : Prop :=
  ∀ m ∈ ms, m.counts = false → Fragment.chars w m.fragment = []

theorem Silent.tail {m : Member α} {ms : List (Member α)} (h : Silent w (m :: ms)) :
    Silent w ms := fun x hx => h x (List.mem_cons_of_mem m hx)

theorem places_cons (w : Writer) (m : Member α) (ms : List (Member α)) :
    places w (m :: ms) =
      (if m.counts then [(m.condition, Fragment.chars w m.fragment)] else []) ++ places w ms := by
  rw [places, List.filter_cons]
  cases m.counts <;> rfl

theorem any_counts_eq (w : Writer) (ms : List (Member α)) :
    ms.any counts = !(places w ms).isEmpty := by
  induction ms with
  | nil => rfl
  | cons m ms ih =>
    rw [List.any_cons, places_cons, ih]
    cases m.counts <;> simp

theorem chars_linked {ms : List (Member α)} (h : Silent w ms) :
    Fragment.chars w (linked ms) = connected (places w ms) := by
  induction ms with
  | nil => rfl
  | cons m ms ih =>
    rw [linked_cons, places_cons, Fragment.chars_append, ih h.tail]
    cases hcounts : m.counts with
    | true => simp [link, connected, Piece.chars]
    | false => simp [h m List.mem_cons_self hcounts]

theorem chars_chain {opening : Condition α → Fragment} {ms : List (Member α)}
    (h : Silent w ms) :
    Fragment.chars w (chain opening ms) =
      introduced (fun c => Fragment.chars w (opening c)) (places w ms) := by
  induction ms with
  | nil => rfl
  | cons m ms ih =>
    rw [chain, places_cons]
    cases hcounts : m.counts with
    | true => simp [introduced, chars_linked h.tail]
    | false => simp [h m List.mem_cons_self hcounts, ih h.tail]

theorem chars_chainOfText {ms : List (Member α)} (h : Silent w ms) :
    Fragment.chars w (chainOfText w false ms) =
      introduced (fun _ => []) (shown false (places w ms)) := by
  induction ms with
  | nil => rfl
  | cons m ms ih =>
    rw [chainOfText, places_cons, Bool.and_false, Bool.false_or]
    by_cases htext : Fragment.chars w m.fragment = []
    · rw [(Fragment.isEmptyBy_iff w _).2 htext]
      cases m.counts <;> simpa [htext, shown] using ih h.tail
    · have hcounts : m.counts = true := by
        cases hcounts : m.counts with
        | true => rfl
        | false => exact absurd (h m List.mem_cons_self hcounts) htext
      have hempty : Fragment.isEmptyBy w m.fragment = false := by
        simpa [← Fragment.isEmptyBy_iff] using htext
      rw [hempty, hcounts, Bool.not_false, chainOfText_started]
      simp [shown, htext, introduced, chars_linked h.tail]

@[simp] theorem shown_true (xs : Texts α) : shown true xs = xs := rfl

theorem shown_nil (started : Bool) : shown started ([] : Texts α) = [] := by
  cases started <;> rfl

/-- A text is shown, whether there is one before it or not. -/
theorem shown_cons {x : Condition α × List Char} (hx : x.2 ≠ []) (started : Bool)
    (xs : Texts α) : shown started (x :: xs) = x :: xs := by
  cases started with
  | true => rfl
  | false => rw [shown, if_neg Bool.false_ne_true, List.dropWhile_cons_of_neg (by simpa using hx)]

theorem introduced_shown_false_eq_nil {xs : Texts α} :
    introduced (fun _ => []) (shown false xs) = [] ↔ shown false xs = [] := by
  induction xs with
  | nil => simp [shown, introduced]
  | cons x xs ih =>
    by_cases hx : x.2 = []
    · simpa [shown, hx] using ih
    · simp [shown_cons hx, introduced, hx]

end Member

namespace Condition

open Member

variable {α : Type} {w : Writer} {text : Bool → α → List Char} {blank : Bool → α → Bool}
  {inner : Bool}

theorem bracket_ne_nil (n : Bool) : bracket n ≠ [] := by cases n <;> simp [bracket]

theorem bracketed_eq_nil_iff (n : Bool) (xs : Texts α) : bracketed n xs = [] ↔ xs = [] := by
  cases xs <;> simp [bracketed]

/-- The parenthesis introduces the chain of a group. -/
theorem bracketed_eq_introduced (n : Bool) (xs : Texts α) :
    bracketed n xs = introduced (fun _ => bracket n) xs ++ (if xs.isEmpty then [] else [')']) := by
  cases xs <;> simp [bracketed, introduced]

theorem Shorter.length_bracketed_lt {xs ys : Texts α} (h : Shorter false xs ys) (n : Bool) :
    (bracketed n xs).length < (bracketed n ys).length := by
  have hlt : (introduced (fun _ => bracket n) xs).length <
      (introduced (fun _ => bracket n) ys).length :=
    h.length_introduced_lt (fun _ => bracket_ne_nil n) (fun _ _ => by omega) rfl
  rw [bracketed_eq_introduced, bracketed_eq_introduced, List.length_append, List.length_append]
  refine Nat.add_lt_add_of_lt_of_le hlt ?_
  cases ys with
  | nil => exact absurd h.eq_nil.2 Bool.false_ne_true
  | cons y ys => cases xs <;> simp

/-- How a group becomes a member: it takes a place if something is shown of its chain, and is
written as what is shown. -/
structure Brackets (w : Writer) (inner : Bool)
    (group : List (Condition α) → Bool → Connector → List (Member α) → Member α) : Prop where
  condition (gs : List (Condition α)) (n : Bool) (k : Connector) (gms : List (Member α)) :
    (group gs n k gms).condition = .group gs n k
  counts (gs : List (Condition α)) (n : Bool) (k : Connector) {gms : List (Member α)}
    (h : Silent w gms) :
    (group gs n k gms).counts = !(shown inner (places w gms)).isEmpty
  chars (gs : List (Condition α)) (n : Bool) (k : Connector) {gms : List (Member α)}
    (h : Silent w gms) :
    Fragment.chars w (group gs n k gms).fragment = bracketed n (shown inner (places w gms))

/-- The members beside the conditions they were made of: their chain is the one that there should
be, or longer. -/
structure Tracks (w : Writer) (text : Bool → α → List Char) (blank : Bool → α → Bool)
    (inner : Bool) (cs : List (Condition α)) (ms : List (Member α)) : Prop where
  silent : Silent w ms
  hollow : kept text cs = [] ↔ (signedOf cs).all (fun x => blank x.1 x.2) = true
  shorter (started : Bool) :
    Shorter (gaplessAll blank inner started cs) (kept text cs) (shown started (places w ms))

namespace Tracks

theorem nil (w : Writer) (text : Bool → α → List Char) (blank : Bool → α → Bool) (inner : Bool) :
    Tracks w text blank inner [] [] where
  silent := by simp [Silent]
  hollow := by simp [kept, signedOf]
  shorter started := by
    rw [places, List.filter_nil, List.map_nil, shown_nil]
    exact .nil

theorem test {n : Bool} {t : α} {f : Fragment} (htext : text n t = Fragment.chars w f)
    (hblank : blank n t = true ↔ text n t = []) (k : Connector) {cs : List (Condition α)}
    {ms : List (Member α)} (h : Tracks w text blank inner cs ms) :
    Tracks w text blank inner (.test t n k :: cs) (⟨.test t n k, true, f⟩ :: ms) where
  silent m hm hcounts := by
    rcases List.mem_cons.1 hm with rfl | hm
    · simp at hcounts
    · exact h.silent m hm hcounts
  hollow := by
    rw [kept_cons_eq_nil_iff, textOf_test, ← hblank, h.hollow]
    simp [signedOf, signed]
  shorter started := by
    have hhollow : isHollow blank (.test t n k) = blank n t := by simp [isHollow, signed]
    rw [places_cons, if_pos rfl, ← htext, gaplessAll, gapless, hhollow, List.singleton_append]
    by_cases hnil : text n t = []
    · rw [kept_cons_of_eq_nil text (by rwa [textOf_test]), hblank.2 hnil, hnil]
      cases started with
      | true => exact .lose _ (h.shorter true)
      | false => exact h.shorter false
    · have hfull : blank n t = false := by simpa [← hblank] using hnil
      rw [kept_cons_of_ne_nil text (by rwa [textOf_test]), textOf_test, shown_cons hnil, hfull]
      simpa using Shorter.keep _ (h.shorter true)

/-- A member that is a group takes a place exactly if something is shown of its chain. Then it has
text, so it is shown itself. -/
theorem group {group : List (Condition α) → Bool → Connector → List (Member α) → Member α}
    (hgroup : Brackets w inner group) {gs : List (Condition α)} {gms : List (Member α)} (n : Bool)
    (k : Connector) {cs : List (Condition α)} {ms : List (Member α)}
    (hg : Tracks w text blank inner gs gms) (h : Tracks w text blank inner cs ms) :
    Tracks w text blank inner (.group gs n k :: cs) (group gs n k gms :: ms) where
  silent m hm hcounts := by
    rcases List.mem_cons.1 hm with rfl | hm
    · rw [hgroup.counts gs n k hg.silent, Bool.not_eq_false', List.isEmpty_iff] at hcounts
      rw [hgroup.chars gs n k hg.silent, bracketed_eq_nil_iff, hcounts]
    · exact h.silent m hm hcounts
  hollow := by
    rw [kept_cons_eq_nil_iff, textOf_group, bracketed_eq_nil_iff, hg.hollow, h.hollow, signedOf,
      signed, List.all_append, Bool.and_eq_true]
  shorter started := by
    have hthis := hg.shorter inner
    rw [places_cons, hgroup.counts gs n k hg.silent, hgroup.condition,
      hgroup.chars gs n k hg.silent, gaplessAll, gapless]
    by_cases hshown : shown inner (places w gms) = []
    · rw [hshown] at hthis ⊢
      obtain ⟨hkept, hexact⟩ := hthis.eq_nil
      have hhollow : isHollow blank (.group gs n k) = true := hg.hollow.1 hkept
      rw [kept_cons_of_eq_nil text (by rw [textOf, hkept]; rfl), hexact, hhollow]
      simpa using h.shorter started
    have htext : bracketed n (shown inner (places w gms)) ≠ [] := by
      rwa [Ne, bracketed_eq_nil_iff]
    rw [if_pos (by simpa using hshown), List.singleton_append, shown_cons htext]
    cases hexact : gaplessAll blank inner inner gs with
    | true =>
      have heq := hthis.eq_of_exact hexact
      have hhollow : isHollow blank (.group gs n k) = false := by
        rw [Bool.eq_false_iff, Ne, isHollow, signed, ← hg.hollow, heq]
        exact hshown
      rw [kept_cons_of_ne_nil text (by rwa [textOf, heq]), textOf, heq, hhollow]
      simpa using Shorter.keep _ (h.shorter true)
    | false =>
      -- The place that the group takes starts the chain, whether it should have one or not.
      rw [hexact] at hthis
      by_cases hc : textOf text (.group gs n k) = []
      · rw [kept_cons_of_eq_nil text hc]
        exact .lose _ (h.shorter true)
      · rw [kept_cons_of_ne_nil text hc]
        exact .shrink _ (hthis.length_bracketed_lt n) (h.shorter true)

end Tracks

/-- The text of a test that is not refused. -/
def testText (w : Writer) (test : Bool → α → Except CompileError Fragment) (negated : Bool)
    (t : α) : List Char :=
  Fragment.chars w ((test negated t).toOption.getD [])

theorem testText_eq {test : Bool → α → Except CompileError Fragment} {n : Bool} {t : α}
    {f : Fragment} (h : test n t = .ok f) : testText w test n t = Fragment.chars w f := by
  rw [testText, h]
  rfl

/-- Whatever the members are made by, they track the chain of the texts of their tests. -/
theorem tracks_members {test : Bool → α → Except CompileError Fragment}
    {group : List (Condition α) → Bool → Connector → List (Member α) → Member α}
    (hgroup : Brackets w inner group)
    (hblank : ∀ n t f, test n t = .ok f → (blank n t = true ↔ Fragment.chars w f = []))
    {cs : List (Condition α)} {ms : List (Member α)} (h : members test group cs = .ok ms) :
    Tracks w (testText w test) blank inner cs ms := by
  refine members_induction (motive := Tracks w (testText w test) blank inner) ?_ ?_ ?_ h
  · exact Tracks.nil w (testText w test) blank inner
  · intro t n k f cs ms hf ih
    have htext := testText_eq (w := w) hf
    exact Tracks.test htext (htext ▸ hblank n t f hf) k ih
  · intro gs gms n k cs ms ihg ih
    exact Tracks.group hgroup n k ihg ih

end Condition

end ClauseTree
