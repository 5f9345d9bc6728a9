import ClauseTree.Fragment.Statement
import ClauseTree.Proofs.Fragment.Members

/-!
# The text of a fragment

`spacedText` joins the texts that are not empty by single blanks. `written_spaced` says that
fragments are spaced in this way, if those are blank that have no text.

That has to be shown of each part of a statement, because `isBlank` looks at words and raw
text only: of a name and of a value it takes for granted that they have text, whatever the
dialect makes of them. `Settled` is the property in question. It holds of every fragment
with a word in it, so it can only fail for one that is made of names and values alone, and
no part of a statement is.
-/

namespace ClauseTree

theorem intercalate_cons (s t : String) (ts : List String) :
    s.intercalate (t :: ts) = t ++ String.join (ts.map (s ++ ·)) := by
  induction ts generalizing t with
  | nil => simp
  | cons u us ih =>
    rw [String.intercalate_cons_cons, ih, List.map_cons, String.join_cons, String.append_assoc,
      String.append_assoc]

/-- The texts that are not empty, with a blank between each two. -/
def spacedText (ts : List String) : String := " ".intercalate (ts.filter (· ≠ ""))

/-- A blank before each of the texts that are not empty. -/
def spacedAfterText (ts : List String) : String :=
  String.join ((ts.filter (· ≠ "")).map (" " ++ ·))

theorem spacedText_cons_empty (ts : List String) : spacedText ("" :: ts) = spacedText ts := rfl

theorem spacedText_cons {t : String} (ht : t ≠ "") (ts : List String) :
    spacedText (t :: ts) = t ++ spacedAfterText ts := by
  rw [spacedText, List.filter_cons_of_pos (by simpa using ht), intercalate_cons]
  rfl

theorem spacedAfterText_cons (t : String) (ts : List String) :
    spacedAfterText (t :: ts) = (if t = "" then "" else " " ++ t) ++ spacedAfterText ts := by
  by_cases ht : t = ""
  · rw [if_pos ht, ht, String.empty_append]
    rfl
  · rw [if_neg ht, spacedAfterText, List.filter_cons_of_pos (by simpa using ht), List.map_cons,
      String.join_cons]
    rfl

namespace Fragment

variable {w : Writer}

@[simp] theorem written_nil (w : Writer) : written w [] = "" := rfl

@[simp] theorem written_append (w : Writer) (f g : Fragment) :
    written w (f ++ g) = written w f ++ written w g := by
  rw [written, chars_append, String.ofList_append]
  rfl

@[simp] theorem written_word_cons (w : Writer) (t : String) (f : Fragment) :
    written w (.word t :: f) = t ++ written w f := by
  rw [written, chars_cons, String.ofList_append, Piece.chars, String.ofList_toList]
  rfl

theorem written_joined (w : Writer) (word : String) (fs : List Fragment) :
    written w (joined word fs) = word.intercalate (fs.map (written w)) := by
  induction fs with
  | nil => rw [joined, List.map_nil, String.intercalate_nil, written_nil]
  | cons f fs ih =>
    cases fs with
    | nil => rw [joined, List.map_cons, List.map_nil, String.intercalate_singleton]
    | cons g gs =>
      rw [List.map_cons, String.intercalate_cons_of_ne_nil (by simp), ← ih, String.append_assoc]
      exact (written_append w f _).trans (by rw [written_word_cons])

/-- The fragment is blank exactly if the writer has no text for it. -/
def Settled (w : Writer) (f : Fragment) : Prop := f.isBlank = true ↔ f.written w = ""

namespace Settled

theorem nil (w : Writer) : Settled w [] := by simp [Settled, isBlank]

theorem append {f g : Fragment} (hf : Settled w f) (hg : Settled w g) : Settled w (f ++ g) := by
  rw [Settled, isBlank_append, Bool.and_eq_true, written_append, String.append_eq_empty_iff]
  exact and_congr hf hg

/-- A word that is not empty settles the whole fragment. -/
theorem word_cons {t : String} (ht : t ≠ "") (f : Fragment) : Settled w (.word t :: f) := by
  have hblank : isBlank (.word t :: f) = false := by
    simp [isBlank, Piece.isBlank, ht]
  rw [Settled, hblank, written_word_cons, String.append_eq_empty_iff]
  simp [ht]

/-- Raw text that is taken over as it stands is blank if it is empty. -/
theorem raw (d : Dialect) (r : Raw) : Settled d.writer [.raw r] := by
  have htext : written d.writer [.raw r] = r.sql := by
    rw [written, chars_cons, chars_nil, List.append_nil]
    exact String.ofList_toList
  rw [Settled, htext]
  simp [isBlank, Piece.isBlank]

theorem flatMap {α : Type} {f : α → Fragment} {as : List α} (h : ∀ a ∈ as, Settled w (f a)) :
    Settled w (as.flatMap f) := by
  induction as with
  | nil => exact nil w
  | cons a as ih =>
    rw [List.flatMap_cons]
    exact (h a List.mem_cons_self).append (ih fun b hb => h b (List.mem_cons_of_mem a hb))

theorem spacedAfter {fs : List Fragment} (h : ∀ f ∈ fs, Settled w f) :
    Settled w (spacedAfter fs) := by
  refine flatMap fun f hf => ?_
  split
  · exact h f hf
  · exact word_cons (by decide) f

theorem spaced {fs : List Fragment} (h : ∀ f ∈ fs, Settled w f) : Settled w (spaced fs) := by
  induction fs with
  | nil => exact nil w
  | cons f fs ih =>
    have hf : Settled w f := h f List.mem_cons_self
    have hfs : ∀ g ∈ fs, Settled w g := fun g hg => h g (List.mem_cons_of_mem f hg)
    rw [Fragment.spaced]
    split
    · exact hf.append (ih hfs)
    · exact hf.append (spacedAfter hfs)

end Settled

theorem written_spacedAfter {fs : List Fragment} (h : ∀ f ∈ fs, Settled w f) :
    written w (spacedAfter fs) = spacedAfterText (fs.map (written w)) := by
  induction fs with
  | nil => rfl
  | cons f fs ih =>
    have hf : f.isBlank = true ↔ f.written w = "" := h f List.mem_cons_self
    have hfs := ih fun g hg => h g (List.mem_cons_of_mem f hg)
    rw [spacedAfter, List.flatMap_cons, written_append, ← spacedAfter, hfs, List.map_cons,
      spacedAfterText_cons]
    by_cases hblank : f.isBlank = true
    · rw [if_pos hblank, if_pos (hf.1 hblank), hf.1 hblank]
    · rw [if_neg hblank, if_neg (mt hf.2 hblank), written_word_cons]

/-- Fragments are spaced like their texts. -/
theorem written_spaced {fs : List Fragment} (h : ∀ f ∈ fs, Settled w f) :
    written w (spaced fs) = spacedText (fs.map (written w)) := by
  induction fs with
  | nil => rfl
  | cons f fs ih =>
    have hf : f.isBlank = true ↔ f.written w = "" := h f List.mem_cons_self
    have hfs : ∀ g ∈ fs, Settled w g := fun g hg => h g (List.mem_cons_of_mem f hg)
    rw [spaced, List.map_cons]
    by_cases hblank : f.isBlank = true
    · rw [if_pos hblank, written_append, hf.1 hblank, String.empty_append, ih hfs,
        spacedText_cons_empty]
    · rw [if_neg hblank, written_append, written_spacedAfter hfs,
        spacedText_cons (mt hf.2 hblank)]

end Fragment

/-! ## The parts of a statement -/

open Fragment

/-- Members that do not count and write nothing leave nothing of their group. -/
theorem Member.chain_eq_nil {α : Type} {opening : Condition α → Fragment} {ms : List (Member α)}
    (hcounts : ∀ m ∈ ms, m.counts = false) (hnil : ∀ m ∈ ms, m.fragment = []) :
    chain opening ms = [] := by
  induction ms with
  | nil => rfl
  | cons m ms ih =>
    rw [chain, if_neg (by simp [hcounts m List.mem_cons_self]), hnil m List.mem_cons_self]
    exact ih (fun x hx => hcounts x (List.mem_cons_of_mem m hx))
      (fun x hx => hnil x (List.mem_cons_of_mem m hx))

/-- Words that introduce whatever member is the first one stand before the chain, if there is
one. -/
theorem Member.chain_eq_ite {α : Type} {opening : Condition α → Fragment} {f : Fragment}
    {ms : List (Member α)} (hnil : ∀ m ∈ ms, m.counts = false → m.fragment = [])
    (hopening : ∀ m ∈ ms, opening m.condition = f) :
    chain opening ms = if ms.any counts then f ++ chain (fun _ => []) ms else [] := by
  induction ms with
  | nil => rfl
  | cons m ms ih =>
    rw [chain, chain, List.any_cons]
    cases hcounts : m.counts with
    | true => simp [hopening m List.mem_cons_self]
    | false =>
      have hms := ih (fun x hx => hnil x (List.mem_cons_of_mem m hx))
        fun x hx => hopening x (List.mem_cons_of_mem m hx)
      simpa [hnil m List.mem_cons_self hcounts] using hms

theorem Member.settled_chain {α : Type} {w : Writer} {keyword : String} (hkeyword : keyword ≠ "")
    {ms : List (Member α)} (hnil : ∀ m ∈ ms, m.counts = false → m.fragment = []) :
    Settled w (chain (fun _ => [.word keyword, .word " "]) ms) := by
  rw [chain_eq_ite hnil fun _ _ => rfl]
  split
  · exact Settled.word_cons hkeyword _
  · exact Settled.nil w

namespace WhereClause

variable {d : Dialect} {w : Writer}

/-- In a `where` group only what counts is written. -/
theorem fragment_eq_nil_of_not_counts {cs : List WhereClause} {ms : List (Member Test)}
    (h : members d cs = .ok ms) : ∀ m ∈ ms, m.counts = false → m.fragment = [] := by
  refine Condition.members_induction
    (motive := fun _ ms => ∀ m ∈ ms, m.counts = false → m.fragment = []) ?_ ?_ ?_ h
  · intro m hm
    cases hm
  · intro t n k f cs ms hf ih m hm hcounts
    rcases List.mem_cons.1 hm with rfl | hm
    · cases hcounts
    · exact ih m hm hcounts
  · intro gs gms n k cs ms ihg ih m hm hcounts
    rcases List.mem_cons.1 hm with rfl | hm
    · rw [groupMember] at hcounts ⊢
      split at hcounts
      · cases hcounts
      · next hany =>
        have hnone : ∀ g ∈ gms, g.counts = false := by
          intro g hg
          have hn : ¬ g.counts = true := fun hc => hany (List.any_eq_true.2 ⟨g, hg, hc⟩)
          simpa using hn
        rw [if_neg hany]
        exact Member.chain_eq_nil hnone fun g hg => ihg g hg (hnone g hg)
    · exact ih m hm hcounts

theorem settled_groupFragment {keyword : String} (hkeyword : keyword ≠ "")
    {cs : List WhereClause} {f : Fragment} (h : groupFragment d keyword cs = .ok f) :
    Settled w f := by
  obtain ⟨ms, hms, h⟩ := bind_eq_ok.1 h
  cases h
  exact Member.settled_chain hkeyword (fragment_eq_nil_of_not_counts hms)

end WhereClause

theorem JoinKind.word_ne_empty (k : JoinKind) : k.word ≠ "" := by cases k <;> decide

namespace ArrayJoin

variable {d : Dialect}

theorem settled_fragment {j : ArrayJoin} {f : Fragment} (h : j.fragment d.writer = .ok f) :
    Settled d.writer f := by
  rcases fragment_cases h with ⟨r, -, -, rfl⟩ | ⟨-, ms, -, rfl⟩
  · exact Settled.raw d r
  · exact Settled.word_cons (JoinKind.word_ne_empty j.kind) _

theorem settled_listFragment {js : List ArrayJoin} {f : Fragment}
    (h : listFragment d.writer js = .ok f) : Settled d.writer f := by
  obtain ⟨fs, hfs, h⟩ := bind_eq_ok.1 h
  cases h
  refine Settled.spaced fun f hf => ?_
  obtain ⟨j, -, hj⟩ := exists_of_mem_fragments hfs hf
  exact settled_fragment hj

end ArrayJoin

namespace Fragment

variable {w : Writer}

theorem settled_selected (columns : List String) : Settled w (selected columns) :=
  Settled.word_cons (by decide) _

theorem settled_source (q : Query) : Settled w (source q) := by
  rw [source]
  split
  · exact Settled.word_cons (by decide) _
  · exact Settled.nil w

theorem settled_listed {keyword : String} (hkeyword : keyword ≠ "") (items : List Fragment) :
    Settled w (listed keyword items) := by
  rw [listed]
  split
  · exact Settled.nil w
  · exact Settled.word_cons hkeyword _

theorem settled_groupBy (items : List GroupItem) : Settled w (groupBy items) :=
  settled_listed (by decide) _

theorem settled_orderBy (items : List OrderItem) : Settled w (orderBy items) :=
  settled_listed (by decide) _

theorem settled_limit (d : Dialect) (l : Option Limit) (o : Option UInt64) :
    Settled w (limit d l o) := by
  cases l with
  | some l => exact Settled.word_cons (by decide) _
  | none =>
    rw [limit]
    split
    · exact Settled.word_cons (by decide) _
    · exact Settled.nil w

theorem settled_offset (o : Option UInt64) : Settled w (offset o) := by
  cases o with
  | none => exact Settled.nil w
  | some n =>
    rw [offset]
    split
    · exact Settled.word_cons (by decide) _
    · exact Settled.nil w

theorem settled_lock (l : Option Lock) : Settled w (lock l) := by
  cases l with
  | none => exact Settled.nil w
  | some l => exact Settled.word_cons (by cases l <;> decide) []

end Fragment

end ClauseTree
