import ClauseTree.Proofs.Statement.Inlining

/-!
# Where a quoted name ends

A quoted name doubles the quotes in it and knows no other escape, while the scan of a statement
takes a backslash inside quotes together with the next character. `scan_wrap` says when the two
agree on the end of a name: exactly if no backslash of a segment takes with it a quote of the name
or the quote that closes the segment. Then the scan passes the name without meeting a placeholder
and reads what stands around it as if the name were not there.

Otherwise the scan leaves the name inside quotes, and no later segment can mend that. Once a quote
is hidden, the scan stands outside the quotes of the segment whenever it comes to one of its
characters, `Lost`, because of a doubled quote it takes the one for opening and the other for
closing. So the quote that ends the segment opens quotes, or lies in others.
-/

namespace ClauseTree.Placeholder

/-- The scan stands inside quotes, with no backslash before it. -/
def Unclosed (s : State) : Prop := ∃ quote, isQuote quote = true ∧ s = .inside quote false

/-- The scan stands outside the given quotes, though perhaps inside others. -/
def Lost (quote : Char) (s : State) : Prop :=
  s = .outside ∨ ∃ other escaped, isQuote other = true ∧ other ≠ quote ∧ s = .inside other escaped

theorem Unclosed.run_of_plain {s : State} (h : Unclosed s) {cs : List Char}
    (hcs : ∀ c ∈ cs, isQuote c = false ∧ c ≠ '\\') : s.run cs = s := by
  obtain ⟨quote, hquote, rfl⟩ := h
  induction cs with
  | nil => rfl
  | cons c cs ih =>
    obtain ⟨⟨hc, hback⟩, hcs⟩ := List.forall_mem_cons.1 hcs
    have hne : c ≠ quote := by
      rintro rfl
      exact absurd (hquote.symm.trans hc) (by decide)
    have hnext : (State.inside quote false).next c = .inside quote false := by
      rw [State.next, if_neg hback, if_neg hne]
    change State.run ((State.inside quote false).next c) cs = _
    rw [hnext, ih hcs]

theorem Lost.next {quote : Char} {s : State} (h : Lost quote s) {c : Char} (hc : c ≠ quote) :
    Lost quote (s.next c) := by
  rcases h with rfl | ⟨other, escaped, hother, hne, rfl⟩
  · rw [State.next]
    split
    · next hopens => exact Or.inr ⟨c, false, hopens, hc, rfl⟩
    · exact Or.inl rfl
  · cases escaped with
    | true => exact Or.inr ⟨other, false, hother, hne, rfl⟩
    | false =>
      rw [State.next]
      split
      · exact Or.inr ⟨other, true, hother, hne, rfl⟩
      · split
        · exact Or.inl rfl
        · exact Or.inr ⟨other, false, hother, hne, rfl⟩

theorem Unclosed.run_dot {s : State} (h : Unclosed s) : s.run ['.'] = s :=
  h.run_of_plain (by simp [isQuote])

section Quote

variable {quote : Char} (hquote : isQuote quote = true)
include hquote

theorem Unclosed.lost_next {s : State} (h : Unclosed s) : Lost quote (s.next quote) := by
  obtain ⟨other, hother, rfl⟩ := h
  by_cases hne : other = quote
  · rw [hne, next_inside_quote hquote]
    exact Or.inl rfl
  · rw [State.next, if_neg (quote_ne_backslash hquote), if_neg (Ne.symm hne)]
    exact Or.inr ⟨other, false, hother, hne, rfl⟩

theorem Lost.unclosed_next {s : State} (h : Lost quote s) : Unclosed (s.next quote) := by
  rcases h with rfl | ⟨other, escaped, hother, hne, rfl⟩
  · exact ⟨quote, hquote, next_outside_quote hquote⟩
  · cases escaped with
    | true => exact ⟨other, hother, rfl⟩
    | false =>
      rw [State.next, if_neg (quote_ne_backslash hquote), if_neg (Ne.symm hne)]
      exact ⟨other, hother, rfl⟩

/-- Of a doubled quote, the scan takes the first one for opening and the second one for closing. -/
theorem Lost.run_doubled {s : State} (h : Lost quote s) (c : Char) :
    Lost quote (s.run (if c = quote then [c, c] else [c])) := by
  split
  · next hc =>
    rw [hc]
    exact (h.unclosed_next hquote).lost_next hquote
  · next hc => exact h.next hc

theorem Lost.run_segment {s : State} (h : Lost quote s) (segment : List Char) :
    Lost quote (s.run (segment.flatMap fun c => if c = quote then [c, c] else [c])) := by
  induction segment generalizing s with
  | nil => exact h
  | cons c cs ih =>
    rw [List.flatMap_cons, run_append]
    exact ih (h.run_doubled hquote c)

/-- A backslash that hides a quote leaves the scan inside quotes behind the segment. -/
theorem unclosed_of_hidesQuote {segment : List Char} (h : hidesQuote quote segment = true) :
    Unclosed ((State.inside quote false).run
      ((segment.flatMap fun c => if c = quote then [c, c] else [c]) ++ [quote])) := by
  have hback : '\\' ≠ quote := (quote_ne_backslash hquote).symm
  fun_induction hidesQuote quote segment with
  | case1 => cases h
  | case2 c =>
    obtain rfl : c = '\\' := by simpa using h
    rw [List.flatMap_singleton, if_neg hback]
    exact ⟨quote, hquote, rfl⟩
  | case3 d cs ih =>
    rw [List.flatMap_cons, List.flatMap_cons, if_neg hback, List.append_assoc, List.append_assoc,
      run_append, run_append]
    by_cases hd : d = quote
    · -- The first of the two quotes is hidden, so the second one closes.
      have houtside : ((State.inside quote false).run ['\\']).run
          (if d = quote then [d, d] else [d]) = .outside := by
        rw [if_pos hd, hd]
        exact next_inside_quote hquote
      have hlost := Lost.run_segment hquote (Or.inl houtside) cs
      rw [run_append]
      exact hlost.unclosed_next hquote
    · have hescaped : ((State.inside quote false).run ['\\']).run [d] = .inside quote false :=
        (fills_escaped quote d).run
      rw [if_neg hd, hescaped]
      exact ih (by simpa [hd] using h)
  | case4 c d cs hc ih =>
    rw [List.flatMap_cons, List.append_assoc, run_append, (fills_doubled hquote hc).run]
    exact ih h

theorem unclosed_quoteBetween {segment : List Char} (h : hidesQuote quote segment = true) :
    Unclosed (State.outside.run (quoteBetween quote segment)) := by
  have hstar : segment ≠ ['*'] := by
    rintro rfl
    cases h
  rw [quoteBetween, if_neg hstar]
  change Unclosed (State.run (State.outside.next quote) _)
  rw [next_outside_quote hquote]
  exact unclosed_of_hidesQuote hquote h

/-- A scan that comes to a segment inside quotes leaves it inside quotes. -/
theorem Unclosed.run_quoteBetween {s : State} (h : Unclosed s) (segment : List Char) :
    Unclosed (s.run (quoteBetween quote segment)) := by
  rw [quoteBetween]
  split
  · next hstar =>
    rw [hstar, h.run_of_plain (by simp [isQuote])]
    exact h
  · have hlost := (h.lost_next hquote).run_segment hquote segment
    rw [← List.singleton_append, run_append, run_append]
    exact hlost.unclosed_next hquote

end Quote

theorem run_dotted_cons_cons (d : Dialect) (s : State) (t u : List Char) (us : List (List Char)) :
    s.run (Identifier.dotted d (t :: u :: us)) =
      ((s.run (d.quoteSegment t)).run ['.']).run (Identifier.dotted d (u :: us)) := by
  rw [← run_append, ← run_append]
  rfl

section Identifier

variable {d : Dialect} (hd : d.quoteSegment = quoteBetween d.quote)
  (hquote : isQuote d.quote = true)
include hd hquote

theorem Unclosed.run_dotted {s : State} (h : Unclosed s) (ss : List (List Char)) :
    Unclosed (s.run (Identifier.dotted d ss)) := by
  induction ss generalizing s with
  | nil => exact h
  | cons t ts ih =>
    have ht : Unclosed (s.run (d.quoteSegment t)) := by
      rw [hd]
      exact h.run_quoteBetween hquote t
    cases ts with
    | nil => exact ht
    | cons u us =>
      rw [run_dotted_cons_cons, ht.run_dot]
      exact ih ht

/-- One segment whose quote is hidden is enough. -/
theorem unclosed_dotted {ss : List (List Char)} (h : ∃ s ∈ ss, hidesQuote d.quote s = true) :
    Unclosed (State.outside.run (Identifier.dotted d ss)) := by
  induction ss with
  | nil => simp at h
  | cons t ts ih =>
    cases ht : hidesQuote d.quote t with
    | true =>
      have hunclosed : Unclosed (State.outside.run (d.quoteSegment t)) := by
        rw [hd]
        exact unclosed_quoteBetween hquote ht
      cases ts with
      | nil => exact hunclosed
      | cons u us =>
        rw [run_dotted_cons_cons, hunclosed.run_dot]
        exact hunclosed.run_dotted hd hquote (u :: us)
    | false =>
      have hclosed : State.outside.run (d.quoteSegment t) = .outside := by
        rw [hd]
        exact (fills_quoteBetween hquote ht).run
      have hts : ∃ s ∈ ts, hidesQuote d.quote s = true := by simpa [ht] using h
      cases ts with
      | nil => simp at hts
      | cons u us =>
        rw [run_dotted_cons_cons, hclosed]
        exact ih hts

/-- One segment whose quote is hidden leaves the scan inside quotes behind the whole name. -/
theorem unclosed_chars {i : Identifier}
    (h : ∃ s ∈ i.name ++ i.alias?.getD [], hidesQuote d.quote s = true) :
    Unclosed (State.outside.run (i.chars d)) := by
  rw [Identifier.chars]
  cases halias : i.alias? with
  | none =>
    have hname : ∃ s ∈ i.name, hidesQuote d.quote s = true := by simpa [halias] using h
    simpa using unclosed_dotted hd hquote hname
  | some ss =>
    have hword : State.run .outside [' ', 'a', 's', ' '] = .outside := by decide
    change Unclosed (State.outside.run
      (Identifier.dotted d i.name ++ ([' ', 'a', 's', ' '] ++ Identifier.dotted d ss)))
    rw [run_append, run_append]
    by_cases hname : ∃ s ∈ i.name, hidesQuote d.quote s = true
    · have hunclosed := unclosed_dotted hd hquote hname
      have hskipped : State.run _ [' ', 'a', 's', ' '] = _ :=
        hunclosed.run_of_plain (by simp [isQuote])
      rw [hskipped]
      exact hunclosed.run_dotted hd hquote ss
    · have hclosed : ∀ s ∈ i.name, hidesQuote d.quote s = false := by simpa using hname
      obtain ⟨s, hs, hhides⟩ := h
      have hss : s ∈ ss := by
        rw [halias, Option.getD_some, List.mem_append] at hs
        exact hs.resolve_left fun hmem => hname ⟨s, hmem, hhides⟩
      rw [(fills_dotted hd hquote hclosed).run, hword]
      exact unclosed_dotted hd hquote ⟨s, hss, hhides⟩

end Identifier

end ClauseTree.Placeholder

namespace ClauseTree.Dialect

open Placeholder

/-- No backslash hides a quote in a segment of the name or of the alias. -/
def Closes (d : Dialect) (identifier : String) : Prop :=
  let i := Identifier.ofChars identifier.toList
  ∀ s ∈ i.name ++ i.alias?.getD [], hidesQuote d.quote s = false

instance (d : Dialect) (identifier : String) : Decidable (d.Closes identifier) :=
  inferInstanceAs (Decidable (∀ s ∈ _, _))

/-- The scan passes a quoted name from outside quotes to outside quotes if no backslash hides a
quote in it, for instance because it has no backslash. Then there is no placeholder in it, and the
text around it is read as it would be without the name. Behind any other name the scan stands
inside quotes. -/
theorem scan_wrap {d : Dialect} (hd : d = .clickhouse ∨ d = .plain) (identifier : String) :
    ('\\' ∉ identifier.toList → d.Closes identifier) ∧
    (d.Closes identifier →
      State.outside.run (d.wrap identifier).toList = .outside ∧
      count .outside (d.wrap identifier).toList = 0 ∧
      ∀ before after : List Char, State.outside.run before = .outside →
        count .outside (before ++ (d.wrap identifier).toList ++ after) =
            count .outside before + count .outside after ∧
        State.outside.run (before ++ (d.wrap identifier).toList ++ after) =
          State.outside.run after) ∧
    (¬ d.Closes identifier →
      ∃ quote, State.outside.run (d.wrap identifier).toList = .inside quote false) := by
  have hscanned : d.Scanned := by
    rcases hd with rfl | rfl
    · exact scanned_clickhouse
    · exact scanned_plain
  have htext : (d.wrap identifier).toList =
      (Identifier.ofChars identifier.toList).chars d := String.toList_ofList
  rw [htext]
  refine ⟨?_, ?_, ?_⟩
  · intro hback s hs
    exact hidesQuote_of_notMem fun h => hback (Identifier.mem_of_mem_ofChars hs h)
  · intro hcloses
    have hfills := fills_chars hscanned.quoteSegment hscanned.quote hcloses
    have hcount := count_of_splice? hfills.splice
    refine ⟨hfills.run, hcount, fun before after hbefore => ?_⟩
    constructor
    · rw [count_append, count_append, run_append, hbefore, hfills.run, hcount]
      rfl
    · rw [run_append, run_append, hbefore, hfills.run]
  · intro hhides
    have hexists : ∃ s ∈ (Identifier.ofChars identifier.toList).name ++
        (Identifier.ofChars identifier.toList).alias?.getD [], hidesQuote d.quote s = true := by
      simpa [Closes] using hhides
    obtain ⟨quote, -, hrun⟩ := unclosed_chars hscanned.quoteSegment hscanned.quote hexists
    exact ⟨quote, hrun⟩

theorem scan_wrap_backslashed :
    clickhouse.Closes "db.it`s\\n? as what?" ∧
      State.outside.run (clickhouse.wrap "db.it`s\\n? as what?").toList = .outside ∧
      count .outside (clickhouse.wrap "db.it`s\\n? as what?").toList = 0 ∧
      ¬ plain.Closes "\\\"?" ∧
      ∃ quote, State.outside.run (plain.wrap "\\\"?").toList = .inside quote false := by
  obtain ⟨-, hcloses, -⟩ := scan_wrap (Or.inl rfl) "db.it`s\\n? as what?"
  obtain ⟨-, -, hhides⟩ :=
    scan_wrap (Or.inr rfl : plain = clickhouse ∨ plain = plain) "\\\"?"
  have hname : clickhouse.Closes "db.it`s\\n? as what?" := by decide +kernel
  have hother : ¬ plain.Closes "\\\"?" := by decide +kernel
  exact ⟨hname, (hcloses hname).1, (hcloses hname).2.1, hother, hhides hother⟩

end ClauseTree.Dialect
